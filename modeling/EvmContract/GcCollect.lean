import EvmContract.GcSplit

/-!
# What `gc` is for: the eager collection

The deletion queues defer work: `update_account` queues the scope of a deleted account in
`gcstore` and a code row whose count drops to one or less in `gccode`, and `gc` does the erasing
later, a budget at a time. Without a budget the collection is plain: erase every storage row of a
queued scope and every queued code row whose count is `0`, and empty both queues (`Db.collected`).

* `eraseScope_eq_filter`, `sweepCode_filter`: one queue entry's work, when it is finished, is a
  `filter` of the rows;
* `gcStoreLoop_collected`, `gcCodeLoop_collected`: whatever its budget, a loop leaves rows whose
  eager collection under the queue it leaves is the eager collection of the rows it started from
  under the queue it started from;
* `Db.gc_refines_collected`: each `gc` call is a stuttering step of the eager collection, a call
  returns `true` exactly when it has reached it, and a budget of at least the pending work
  reaches it in one call.
-/

namespace EvmContract

/-- The storage row lies in a scope that a `gcstore` entry of `q` names. -/
def queuedScope (q : List GcStoreRow) (r : StorageRow) : Bool := q.any (·.storageId = r.scope)

/-- The code row has count `0` and a `gccode` entry of `q` names it. -/
def queuedGarbage (q : List GcCodeRow) (c : CodeRow) : Bool :=
  decide (c.refCount = 0) && q.any (·.codeId = c.id)

/-- Queueing scope `id` takes its rows out of what the collection keeps. -/
theorem filter_queuedScope_append (rows : List StorageRow) (q : List GcStoreRow) (k id : Nat) :
    rows.filter (fun r => !queuedScope (q ++ [⟨k, id⟩]) r) =
      (rows.filter (·.scope ≠ id)).filter fun r => !queuedScope q r := by
  rw [List.filter_filter]
  exact List.filter_congr fun r _ => by simp [queuedScope, Bool.and_comm, eq_comm]

namespace Db

/-- The eager collection: every storage row of a queued scope and every queued code row with
count `0` erased, both queues empty. -/
def collected (db : Db) : Db :=
  { db with
    storage := db.storage.ofSublist
      (db.storage.rows.filter fun r => !queuedScope db.gcStore.rows r) (List.filter_sublist _)
    codes := db.codes.ofSublist
      (db.codes.rows.filter fun c => !queuedGarbage db.gcCode.rows c) (List.filter_sublist _)
    gcStore := .empty
    gcCode := .empty }

@[simp] theorem collected_accounts (db : Db) : db.collected.accounts = db.accounts := rfl
@[simp] theorem collected_storage (db : Db) :
    db.collected.storage.rows = db.storage.rows.filter fun r => !queuedScope db.gcStore.rows r :=
  rfl
@[simp] theorem collected_codes (db : Db) :
    db.collected.codes.rows = db.codes.rows.filter fun c => !queuedGarbage db.gcCode.rows c := rfl
@[simp] theorem collected_gcStore (db : Db) : db.collected.gcStore.rows = [] := rfl
@[simp] theorem collected_gcCode (db : Db) : db.collected.gcCode.rows = [] := rfl

/-- On drained queues there is nothing to collect. -/
theorem collected_of_drained {db : Db} (hs : db.gcStore.rows = []) (hc : db.gcCode.rows = []) :
    db.collected = db :=
  ext_rows rfl (by simp [hs, queuedScope]) (by simp [hc, queuedGarbage]) hs.symm hc.symm

end Db

/-! ### The storage loop -/

section StoreLoop

variable (sid : Nat)

/-- A scope emptied with budget left is the rows filtered to the other scopes. -/
theorem eraseScope_eq_filter (l : List StorageRow) (m : UInt32) (h : (eraseScope sid l m).2 ≠ 0) :
    (eraseScope sid l m).1 = l.filter (·.scope ≠ sid) := by
  induction l generalizing m with
  | nil => rfl
  | cons r rs ih =>
    simp only [eraseScope] at h ⊢
    split_ifs at h ⊢ with h0 hs
    · exact absurd h0 h
    · simp [hs, ih _ h]
    · simp [hs, ih _ h]

/-- Rows outside scope `sid` are untouched: any filter that drops the scope is unchanged. -/
theorem eraseScope_filter_of {p : StorageRow → Bool} (hp : ∀ r, r.scope = sid → p r = false)
    (l : List StorageRow) (m : UInt32) : (eraseScope sid l m).1.filter p = l.filter p := by
  induction l generalizing m with
  | nil => rfl
  | cons r rs ih =>
    simp only [eraseScope]
    split_ifs with h0 hs
    · rfl
    · simp [List.filter_cons, hp r hs, ih]
    · simp [List.filter_cons, ih]

/-- The storage loop keeps the eager collection, whatever its budget. -/
theorem gcStoreLoop_collected (q : List GcStoreRow) (rows : List StorageRow) (m : UInt32) :
    (gcStoreLoop q rows m).2.1.filter (fun r => !queuedScope (gcStoreLoop q rows m).1 r) =
      rows.filter fun r => !queuedScope q r := by
  induction q generalizing rows m with
  | nil => rfl
  | cons e es ih =>
    simp only [gcStoreLoop]
    split_ifs with h0 h1
    · rfl
    · exact eraseScope_filter_of _ (fun r hr => by simp [queuedScope, hr]) _ _
    · rw [ih, eraseScope_eq_filter _ _ _ h1, List.filter_filter]
      exact List.filter_congr fun r _ => by simp [queuedScope, eq_comm, Bool.and_comm]

end StoreLoop

/-! ### The code loop -/

section CodeLoop

variable {codes : List CodeRow} (hu : codes.Pairwise fun a b => a.id ≠ b.id)
include hu

/-- One sweep with budget erases exactly the row with the id if its count is `0`. -/
theorem sweepCode_filter {codeId : Nat} {m : UInt32} (hm : m ≠ 0) (p : CodeRow → Bool) :
    (sweepCode codes codeId m).1.filter p =
      codes.filter fun c => p c && !(decide (c.id = codeId) && decide (c.refCount = 0)) := by
  rcases sweepCode_cases hu codeId m with ⟨h, hno⟩ | ⟨c, hc, hid, hz, -, h⟩
  · rw [h]
    exact List.filter_congr fun x hx => by by_cases e : x.id = codeId <;> simp [e, hno hm x hx]
  · rw [h, List.filter_filter]
    refine List.filter_congr fun x hx => ?_
    by_cases hxc : x = c
    · simp [hxc, hid, hz]
    · have hne : x.id ≠ codeId := fun e => hxc (eq_of_codeId_eq hu hx hc (e.trans hid.symm))
      simp [hxc, hne]

/-- The code loop keeps the eager collection, whatever its budget. -/
theorem gcCodeLoop_collected (q : List GcCodeRow) (m : UInt32) :
    (gcCodeLoop q codes m).2.1.filter (fun c => !queuedGarbage (gcCodeLoop q codes m).1 c) =
      codes.filter fun c => !queuedGarbage q c := by
  induction q generalizing codes m with
  | nil => rfl
  | cons j js ih =>
    simp only [gcCodeLoop]
    split_ifs with h0 h1
    · rfl
    · rw [sweepCode_filter hu h0]
      refine List.filter_congr fun c _ => ?_
      by_cases hc : c.id = j.codeId ∧ c.refCount = 0
      · simp [queuedGarbage, hc.1, hc.2]
      · have hd : (decide (c.id = j.codeId) && decide (c.refCount = 0)) = false := by simpa using hc
        rw [hd, Bool.not_false, Bool.and_true]
    · rw [ih (hu.sublist (sweepCode_sublist hu _ _)), sweepCode_filter hu h0]
      exact List.filter_congr fun c _ => by
        by_cases hc : c.refCount = 0 <;> simp [queuedGarbage, hc, eq_comm, Bool.and_comm]

end CodeLoop

/-! ### `gc` -/

namespace Db

/-- A `gc` call leaves the eager collection where it was. -/
theorem gc_collected (db : Db) (max : UInt32) : (db.gc max).2.collected = db.collected :=
  ext_rows rfl (gcStoreLoop_collected _ _ _) (gcCodeLoop_collected (codes_ids_distinct _) _ _) rfl
    rfl

/-- **`gc` refines the eager collection.** Each call, whatever its budget, is a stuttering step
of the eager collection: the tables it leaves collect to what the tables it started from collect
to. A call returns `true` exactly when its tables are that collection, and a budget of at least
the pending work reaches it in one call. -/
theorem gc_refines_collected (db : Db) (max : UInt32) :
    (db.gc max).2.collected = db.collected ∧
      ((db.gc max).1 = true ↔ (db.gc max).2 = db.collected) ∧
      (db.pendingWork ≤ max.toNat → (db.gc max).2 = db.collected) := by
  have hiff : (db.gc max).1 = true ↔ (db.gc max).2 = db.collected := by
    rw [gc_fst_iff, ← gc_collected db max]
    refine ⟨fun h => (collected_of_drained h.1 h.2).symm, fun h => ?_⟩
    rw [h]
    exact ⟨collected_gcStore _, collected_gcCode _⟩
  exact ⟨gc_collected db max, hiff, fun h => hiff.1 (gc_drains_of_le db max h).1⟩

end Db

end EvmContract
